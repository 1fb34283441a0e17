/-
Where numeric literals end. At a digit or a point a scan takes the longest run of digits and points, and with it the
exponent behind the run if there is one: its letter, a sign that may be missing and all digits that follow. A letter
without such digits is left for the next word. The scan fails there if the run has no digit or several points, and
otherwise takes one token, which denotes a number.

- `IsLongestPart`, `BeginsLiteral`: the longest beginning of a text that has a form; a run and its exponent.
- `isLongestPart_exponent`, `beginsLiteral_of_numberLength`: the extent of a number is that of a literal.
- `ScanState.exists_readsLiteral`, `ScanState.takesName_of_isLetter`: one round at a digit or a point, and at a letter.
- `ScanState.round_endsIn`: one round elsewhere has nothing to do with numbers.
- `ScanState.Reached`: how far a scan of the source can have come, and what a whole scan owes to its rounds.
- `scan_literals`: **literals are delimited and validated exactly** in every scan.
-/
import ComplexFormula.Proofs.Decimal.Literal
import ComplexFormula.Proofs.Scanning.Faults
import ComplexFormula.Proofs.Scanning.Lossless
import ComplexFormula.Proofs.Scanning.Spacing

namespace ComplexFormula

open Decimal (isDigit IsRun IsExponent IsExponentPart IsMalformed)
open String (utf8Len)

/-! ## Longest parts -/

/-- the part is the longest beginning of the text that has the form -/
structure IsLongestPart (form : List Char → Prop) (text part : List Char) : Prop where
  holds : form part
  begins : part <+: text
  longest : ∀ other, form other → other <+: text → other.length ≤ part.length

/-- the text begins with the longest run of digits and points there and with the exponent behind it, if there is one -/
structure BeginsLiteral (text run exponent behind : List Char) : Prop where
  split : text = run ++ (exponent ++ behind)
  run : IsLongestPart IsRun text run
  exponent : IsLongestPart IsExponentPart (exponent ++ behind) exponent

section

variable {words : List Word} {c : Char} {cs text other : List Char}

theorem length_le_takeWhile {p : Char → Bool} (hother : ∀ c ∈ other, p c = true) (hbegins : other <+: text) :
    other.length ≤ (text.takeWhile p).length := by
  obtain ⟨rest, rfl⟩ := hbegins
  rw [List.takeWhile_append_of_pos hother, List.length_append]
  exact Nat.le_add_right _ _

theorem isLongestPart_run (text : List Char) : IsLongestPart IsRun text (text.takeWhile isMantissa) where
  holds _ hc := isMantissa_iff.1 (List.mem_takeWhile_imp hc)
  begins := List.takeWhile_prefix isMantissa
  longest _ hother hbegins := length_le_takeWhile (fun c hc => isMantissa_iff.2 (hother c hc)) hbegins

theorem take_signLength_cases (cs : List Char) :
    cs.take (signLength cs) = [] ∨ cs.take (signLength cs) = ['+'] ∨ cs.take (signLength cs) = ['-'] := by
  unfold signLength
  split <;> simp

/-- a sign and digits at the beginning of a text are the sign that is looked for there, and digits behind it -/
theorem signLength_of_begins {sign digits : List Char} (hsign : sign = [] ∨ sign = ['+'] ∨ sign = ['-'])
    (hne : digits ≠ []) (hdigits : ∀ c ∈ digits, isDigit c = true) (hbegins : sign ++ digits <+: cs) :
    signLength cs = sign.length ∧ digits <+: cs.drop (signLength cs) := by
  obtain ⟨rest, rfl⟩ := hbegins
  have hlength : signLength (sign ++ digits ++ rest) = sign.length := by
    rcases hsign with rfl | rfl | rfl
    · obtain ⟨d, ds, rfl⟩ := List.exists_cons_of_ne_nil hne
      obtain ⟨hplus, hminus⟩ := Decimal.ne_sign_of_isDigit (hdigits d List.mem_cons_self)
      rw [List.nil_append, List.cons_append]
      refine signLength.eq_3 _ ?_ ?_
      · exact fun _ heq => hplus (List.cons.inj heq).1
      · exact fun _ heq => hminus (List.cons.inj heq).1
    · rfl
    · rfl
  refine ⟨hlength, ?_⟩
  rw [hlength, List.append_assoc, List.drop_left]
  exact List.prefix_append digits rest

/-- an exponent at the beginning of a text has the sign that is looked for there, and some of the digits behind it -/
theorem length_le_of_isExponent (hother : IsExponent other) (hbegins : other <+: c :: cs) :
    ((c = 'e' ∨ c = 'E') ∧ 0 < ((cs.drop (signLength cs)).takeWhile isDigit).length) ∧
      other.length ≤ 1 + signLength cs + ((cs.drop (signLength cs)).takeWhile isDigit).length := by
  cases hother with
  | @mk letter sign digits hletter hsign hne hdigits =>
    obtain ⟨rfl, hsigned⟩ := List.cons_prefix_cons.1 hbegins
    obtain ⟨hlength, hbehind⟩ := signLength_of_begins hsign hne hdigits hsigned
    have hle := length_le_takeWhile hdigits hbehind
    have hpos := List.length_pos_iff.2 hne
    refine ⟨⟨hletter, by omega⟩, ?_⟩
    rw [List.length_cons, List.length_append]
    omega

/-- **An exponent** is taken as far as it reaches, or not at all. -/
theorem isLongestPart_exponent (cs : List Char) : IsLongestPart IsExponentPart cs (cs.take (exponentLength cs)) := by
  have hbegins := List.take_prefix (exponentLength cs) cs
  cases cs with
  | nil => exact ⟨.inl List.take_nil, hbegins, fun other _ hother => by simp [List.prefix_nil.1 hother]⟩
  | cons c cs =>
    by_cases hexponent : (c = 'e' ∨ c = 'E') ∧ 0 < ((cs.drop (signLength cs)).takeWhile isDigit).length
    · have hlength : exponentLength (c :: cs) =
          1 + signLength cs + ((cs.drop (signLength cs)).takeWhile isDigit).length := if_pos hexponent
      have htake : (c :: cs).take (exponentLength (c :: cs)) =
          c :: (cs.take (signLength cs) ++ (cs.drop (signLength cs)).takeWhile isDigit) := by
        rw [hlength, Nat.add_assoc, Nat.add_comm 1, List.take_succ_cons, List.take_add,
          ← List.prefix_iff_eq_take.1 (List.takeWhile_prefix isDigit)]
      have hform : IsExponent ((c :: cs).take (exponentLength (c :: cs))) := by
        rw [htake]
        exact .mk hexponent.1 (take_signLength_cases cs) (List.length_pos_iff.1 hexponent.2)
          fun d hd => List.mem_takeWhile_imp hd
      refine ⟨.inr hform, hbegins, ?_⟩
      rintro other (rfl | hother) hprefix
      · exact Nat.zero_le _
      · rw [List.length_take_of_le (exponentLength_le (c :: cs)), hlength]
        exact (length_le_of_isExponent hother hprefix).2
    · have hzero : exponentLength (c :: cs) = 0 := if_neg hexponent
      refine ⟨.inl (by rw [hzero, List.take_zero]), hbegins, ?_⟩
      rintro other (rfl | hother) hprefix
      · exact Nat.zero_le _
      · exact absurd (length_le_of_isExponent hother hprefix).1 hexponent

/-- **The extent of a number** is that of a literal. -/
theorem beginsLiteral_of_numberLength {part behind : List Char} (h : numberLength (part ++ behind) = part.length) :
    ∃ run exponent, part = run ++ exponent ∧ BeginsLiteral (part ++ behind) run exponent behind := by
  set text := part ++ behind with htext
  set size := (text.takeWhile isMantissa).length with hsize
  have hrun : text.takeWhile isMantissa = text.take size := List.prefix_iff_eq_take.1 (List.takeWhile_prefix isMantissa)
  have hlength : part.length = size + exponentLength (text.drop size) := h.symm
  have hexponent := isLongestPart_exponent (text.drop size)
  have hpart : part = text.take size ++ (text.drop size).take (exponentLength (text.drop size)) := by
    rw [← List.take_add, ← hlength, htext, List.take_left]
  have hbehind : text.drop size = (text.drop size).take (exponentLength (text.drop size)) ++ behind := by
    have hdrop : (text.drop size).drop (exponentLength (text.drop size)) = behind := by
      rw [List.drop_drop, ← hlength, htext, List.drop_left]
    conv_lhs => rw [← List.take_append_drop (exponentLength (text.drop size)) (text.drop size), hdrop]
  refine ⟨text.take size, (text.drop size).take (exponentLength (text.drop size)), hpart, ?_, ?_, ?_⟩
  · rw [← hbehind, List.take_append_drop]
  · exact hrun ▸ isLongestPart_run text
  · rwa [← hbehind]

end

/-! ## Rounds -/

namespace ScanState

/-- the token of that kind and text at the place of the scan -/
def token (s : ScanState) (kind : Token.Kind) (part : List Char) : Token :=
  ⟨kind, .ofList part, s.pos, s.pos + utf8Len part⟩

/-- the scan with that token and with what is behind it -/
def taking (s : ScanState) (kind : Token.Kind) (part behind : List Char) : ScanState :=
  ⟨s.pos + utf8Len part, s.token kind part :: s.done, behind⟩

/-- a digit or a point comes next -/
def AtLiteral (s : ScanState) : Prop := ∃ c cs, s.rest = c :: cs ∧ isMantissa c = true

/-- what a round does at a literal: it refuses a malformed one, and takes any other as one token -/
structure ReadsLiteral (words : List Word) (s : ScanState) (run exponent behind : List Char) : Prop where
  begins : BeginsLiteral s.rest run exponent behind
  refused_iff : s.round words = .error (.invalidNumber (.ofList (run ++ exponent)) s.pos) ↔ IsMalformed run
  taken : ¬IsMalformed run → s.round words = .ok (s.taking .number (run ++ exponent) behind)
  /-- the text of the token denotes a number -/
  readable : ¬IsMalformed run → (Decimal.read? (.ofList (run ++ exponent))).isSome = true

/-- the next round takes the name or keyword that begins there -/
def TakesName (words : List Word) (s : ScanState) : Prop :=
  ∃ kind c cs behind, s.rest = c :: (cs ++ behind) ∧ isNameKind kind = true ∧
    s.round words = .ok (s.taking kind (c :: cs) behind)

section

variable {lib : Library} {words : List Word} {source : String} {s s' : ScanState} {c : Char}
  {cs part behind : List Char} {kind : Token.Kind}

theorem round_of_readable (hrest : s.rest = c :: (part ++ behind)) (hc : Text.isBlank c = false)
    (hextent : extent? words c (part ++ behind) = some (kind, part.length + 1))
    (hread : kind = .number → (Decimal.read? (.ofList (c :: part))).isSome = true) :
    s.round words = .ok (s.taking kind (c :: part) behind) := by
  have htoken := (@tokenAt_eq_ok_iff s.pos kind _ _).2 ⟨hread, rfl⟩
  rw [round_of_extent hrest hc hextent, htoken, String.utf8ByteSize_ofList]
  rfl

theorem round_of_unreadable (hrest : s.rest = c :: (part ++ behind)) (hc : Text.isBlank c = false)
    (hextent : extent? words c (part ++ behind) = some (.number, part.length + 1))
    (hread : (Decimal.read? (.ofList (c :: part))).isNone = true) :
    s.round words = .error (.invalidNumber (.ofList (c :: part)) s.pos) := by
  rw [round_of_extent hrest hc hextent, tokenAt, if_pos ⟨rfl, hread⟩]
  rfl

/-- **A round at a digit or a point** reads the literal that begins there. -/
theorem exists_readsLiteral (words : List Word) (h : s.AtLiteral) :
    ∃ run exponent behind, s.ReadsLiteral words run exponent behind := by
  obtain ⟨c, cs, hrest, hc⟩ := h
  have hnumber : extent? words c cs = some (.number, numberLength (c :: cs)) := extent_of_isMantissa hc
  obtain ⟨part, behind, rfl, hlength⟩ := exists_cut hnumber
  have hextent := hlength ▸ hnumber
  obtain ⟨run, exponent, htext, hbegins⟩ := @beginsLiteral_of_numberLength (c :: part) behind hlength
  have hne : run ≠ [] := by
    rintro rfl
    have hlongest := hbegins.run.longest [c] (List.forall_mem_singleton.2 (isMantissa_iff.1 hc)) ⟨_, rfl⟩
    cases hlongest
  have hread := Decimal.isSome_read?_iff hbegins.run.holds hne hbegins.exponent.holds
  have hblank := isBlank_of_isMantissa hc
  rw [← htext] at hread
  refine ⟨run, exponent, behind, ?_⟩
  by_cases hmalformed : IsMalformed run
  · have hnone : (Decimal.read? (.ofList (c :: part))).isNone = true := by
      rw [← Option.not_isSome, Bool.not_eq_true', ← Bool.not_eq_true, hread, not_not]
      exact hmalformed
    have hround := round_of_unreadable hrest hblank hextent hnone
    rw [htext] at hround
    exact ⟨hrest ▸ hbegins, iff_of_true hround hmalformed, fun hwell => absurd hmalformed hwell,
      fun hwell => absurd hmalformed hwell⟩
  · have hsome := hread.2 hmalformed
    have hround := round_of_readable hrest hblank hextent fun _ => hsome
    rw [htext] at hround hsome
    refine ⟨hrest ▸ hbegins, iff_of_false ?_ hmalformed, fun _ => hround, fun _ => hsome⟩
    intro hrefused
    cases hround.symm.trans hrefused

/-- **A round at a letter** takes the name that begins there. -/
theorem takesName_of_isLetter (hrest : s.rest = c :: cs) (hc : isLetter c = true) : s.TakesName lib.lexicon := by
  have hextent : extent? lib.lexicon c cs = some (wordExtent lib.lexicon c cs) := extent_of_isLetter hc
  obtain ⟨kind, size, hword⟩ : ∃ kind size, wordExtent lib.lexicon c cs = (kind, size) := ⟨_, _, rfl⟩
  have hkind := isNameKind_of_wordExtent hword
  rw [hword] at hextent
  obtain ⟨part, behind, rfl, rfl⟩ := exists_cut hextent
  have hblank : Text.isBlank c = false := isBlank_of_isNameChar (by simp [isNameChar, hc])
  refine ⟨kind, c, part, behind, hrest, hkind, round_of_readable hrest hblank hextent ?_⟩
  rintro rfl
  cases hkind

/-- **Elsewhere** a round neither takes a number nor refuses one. -/
theorem round_endsIn (h : ¬s.AtLiteral) :
    EndsIn (fun fault => ∀ text pos, fault ≠ .invalidNumber text pos)
      (fun s' => ∀ t ∈ s'.done, t.kind = .number → t ∈ s.done) (s.round lib.lexicon) := by
  have htaking : ∀ {kind part behind}, kind ≠ .number →
      ∀ t ∈ (s.taking kind part behind).done, t.kind = .number → t ∈ s.done := by
    intro kind part behind hkind t ht hnumber
    rcases List.mem_cons.1 ht with rfl | ht
    · exact absurd hnumber hkind
    · exact ht
  cases hrest : s.rest with
  | nil =>
    rw [round, hrest]
    exact .ok fun t ht _ => ht
  | cons c cs =>
    have hmantissa : ¬isMantissa c = true := fun hc => h ⟨c, cs, hrest, hc⟩
    by_cases hblank : Text.isBlank c = true
    · simp only [round, hrest, hblank, if_true]
      exact .ok fun t ht _ => ht
    · by_cases hletter : isLetter c = true
      · have hname : s.TakesName lib.lexicon := takesName_of_isLetter hrest hletter
        obtain ⟨kind, _, _, _, -, hkind, hround⟩ := hname
        rw [hround]
        refine .ok (htaking ?_)
        rintro rfl
        cases hkind
      · have hextent : extent? lib.lexicon c cs = symbolExtent? c cs := extent_of_symbol hmantissa hletter
        cases hsymbol : symbolExtent? c cs with
        | none =>
          rw [hsymbol] at hextent
          simp only [round, hrest, if_neg hblank, hextent]
          refine .error fun text pos heq => ?_
          cases heq
        | some extent =>
          obtain ⟨kind, size⟩ := extent
          rw [hsymbol] at hextent
          have hkind := (isNameKind_of_symbolExtent hsymbol).2
          obtain ⟨part, behind, rfl, rfl⟩ := exists_cut hextent
          rw [round_of_readable hrest (by simpa using hblank) hextent fun hnumber => absurd hnumber hkind]
          exact .ok (htaking hkind)

end

/-! ## Whole scans -/

/-- a scan of the source comes to this state -/
inductive Reached (words : List Word) (source : String) : ScanState → Prop where
  | start : Reached words source (.start source)
  | round {s s'} (h : Reached words source s) (hround : s.round words = .ok s') : Reached words source s'

namespace Reached

variable {lib : Library} {words : List Word} {source : String} {s s' : ScanState} {fault : Fault} {ts : List Token}

/-- the text behind the scan is taken apart wherever the scan has come to -/
theorem upto (h : Reached words source s) : CutInto.Upto source.toList s := by
  induction h with
  | start => exact CutInto.upto_start source
  | round _ hround ih => exact CutInto.round ih hround

/-- what remains is scanned as it is within the scan of the source -/
theorem scanFrom_eq (h : Reached words source s) :
    scanFrom words s.pos s.done s.rest = scanFrom words 0 [] source.toList := by
  induction h with
  | start => rfl
  | @round s s' _ hround ih =>
    by_cases hrest : s.rest = []
    · rw [ScanState.round, hrest] at hround
      obtain rfl := Except.ok.inj hround
      exact ih
    · rw [← ih, scanFrom_eq_round hrest, hround, ok_bind]

/-- the fault of a round is that of the scan -/
theorem scan_eq_error (h : Reached lib.lexicon source s) (hrest : s.rest ≠ [])
    (hround : s.round lib.lexicon = .error fault) : scan lib source = .error fault := by
  rw [scan, ← h.scanFrom_eq, scanFrom_eq_round hrest, hround, error_bind]

/-- a token that was read stays -/
theorem mem_of_scan (h : Reached lib.lexicon source s) (hscan : scan lib source = .ok ts) : ∀ t ∈ s.done, t ∈ ts := by
  rw [scan, ← h.scanFrom_eq] at hscan
  obtain ⟨us, rfl, -⟩ := spells_of_scanFrom hscan
  exact fun t ht => List.mem_append_left us (List.mem_reverse.2 ht)

theorem of_rounds_ok {n : Nat} (h : Reached words source s) (hrounds : s.rounds words n = .ok s') :
    Reached words source s' := by
  induction n generalizing s with
  | zero => exact Except.ok.inj hrounds ▸ h
  | succ n ih =>
    obtain ⟨next, hnext, hrounds⟩ := bind_eq_ok_iff.1 hrounds
    exact ih (h.round hnext) hrounds

theorem of_rounds_error {n : Nat} (h : Reached words source s) (hrounds : s.rounds words n = .error fault) :
    ∃ s', Reached words source s' ∧ s'.round words = .error fault := by
  induction n generalizing s with
  | zero => cases hrounds
  | succ n ih =>
    rcases bind_eq_error_iff.1 hrounds with hround | ⟨next, hnext, hrounds⟩
    · exact ⟨s, h, hround⟩
    · exact ih (h.round hnext) hrounds

/-- **Every number that was read** is a literal that the scan came to. -/
theorem exists_readsLiteral_of_mem (h : Reached lib.lexicon source s) {t : Token} (ht : t ∈ s.done)
    (hkind : t.kind = .number) : ∃ s₀ run exponent behind, Reached lib.lexicon source s₀ ∧
      s₀.ReadsLiteral lib.lexicon run exponent behind ∧ ¬IsMalformed run ∧ t = s₀.token .number (run ++ exponent) := by
  induction h with
  | start => cases ht
  | @round s s' hs hround ih =>
    by_cases hliteral : s.AtLiteral
    · obtain ⟨run, exponent, behind, hreads⟩ := s.exists_readsLiteral lib.lexicon hliteral
      by_cases hmalformed : IsMalformed run
      · cases (hreads.refused_iff.2 hmalformed).symm.trans hround
      · obtain rfl := Except.ok.inj ((hreads.taken hmalformed).symm.trans hround)
        rcases List.mem_cons.1 ht with rfl | ht
        · exact ⟨s, run, exponent, behind, hs, hreads, hmalformed, rfl⟩
        · exact ih ht
    · exact ih ((round_endsIn hliteral).of_eq_ok hround t ht hkind)

end Reached

/-- **The fault of a scan** is that of a round that the scan comes to. -/
theorem exists_reached_of_scan_error {lib : Library} {source : String} {fault : Fault}
    (h : scan lib source = .error fault) : ∃ s, Reached lib.lexicon source s ∧ s.round lib.lexicon = .error fault := by
  have hends := (rounds_eq_scanFrom lib.lexicon (.start source) (Nat.le_refl _)).1
  exact Reached.start.of_rounds_error (map_eq_error_iff.1 (hends.trans h))

/-- the tokens of a scan are those of a state that it comes to -/
theorem exists_reached_of_scan_ok {lib : Library} {source : String} {ts : List Token} (h : scan lib source = .ok ts) :
    ∃ s, Reached lib.lexicon source s ∧ s.done.reverse = ts := by
  have hends := (rounds_eq_scanFrom lib.lexicon (.start source) (Nat.le_refl _)).1
  obtain ⟨s, hs, hts⟩ := map_eq_ok_iff.1 (hends.trans h)
  exact ⟨s, Reached.start.of_rounds_ok hs, hts⟩

end ScanState

/-- **Literals are delimited and validated exactly.** Wherever a scan comes to a digit or a point, it reads the longest
run of digits and points and the exponent behind it. If the run has no digit or several points, the scan fails there and
shows both parts; otherwise they become one token, which denotes a number, and a letter behind it begins a name. A scan
fails with an invalid number nowhere else, and no number that it yields comes from anywhere else. -/
theorem scan_literals (lib : Library) (source : String) :
    (∀ s : ScanState, s.Reached lib.lexicon source → s.AtLiteral → ∃ run exponent behind,
      s.ReadsLiteral lib.lexicon run exponent behind ∧ StandsAt source s.pos (.ofList (run ++ exponent)) ∧
      (IsMalformed run → scan lib source = .error (.invalidNumber (.ofList (run ++ exponent)) s.pos)) ∧
      (¬IsMalformed run → (∀ ts, scan lib source = .ok ts → s.token .number (run ++ exponent) ∈ ts) ∧
        ((∃ c ∈ behind.head?, isLetter c = true) →
          (s.taking .number (run ++ exponent) behind).TakesName lib.lexicon))) ∧
    (∀ text pos, scan lib source = .error (.invalidNumber text pos) → ∃ s run exponent behind,
      ScanState.Reached lib.lexicon source s ∧ s.ReadsLiteral lib.lexicon run exponent behind ∧ IsMalformed run ∧
        text = .ofList (run ++ exponent) ∧ pos = s.pos) ∧
    ∀ ts, scan lib source = .ok ts → ReadableNumbers ts ∧ ∀ t ∈ ts, t.kind = .number → ∃ s run exponent behind,
      ScanState.Reached lib.lexicon source s ∧ s.ReadsLiteral lib.lexicon run exponent behind ∧ ¬IsMalformed run ∧
        t = s.token .number (run ++ exponent) := by
  refine ⟨?_, ?_, ?_⟩
  · intro s hs hliteral
    obtain ⟨run, exponent, behind, hreads⟩ := s.exists_readsLiteral lib.lexicon hliteral
    obtain ⟨c, cs, hrest, -⟩ := hliteral
    have hne : s.rest ≠ [] := by simp [hrest]
    refine ⟨run, exponent, behind, hreads, ?_, ?_, ?_⟩
    · obtain ⟨front, hfront, hpos, -⟩ := hs.upto
      have hstands := standsAt_utf8Len front (run ++ exponent) behind
      rwa [List.append_assoc, ← hreads.begins.split, ← hfront, String.ofList_toList, ← hpos] at hstands
    · exact fun hmalformed => hs.scan_eq_error hne (hreads.refused_iff.2 hmalformed)
    · intro hwell
      refine ⟨fun ts hts => (hs.round (hreads.taken hwell)).mem_of_scan hts _ List.mem_cons_self, ?_⟩
      rintro ⟨d, hd, hletter⟩
      obtain ⟨ds, rfl⟩ := List.head?_eq_some_iff.1 hd
      exact ScanState.takesName_of_isLetter rfl hletter
  · intro text pos hscan
    obtain ⟨s, hs, hround⟩ := ScanState.exists_reached_of_scan_error hscan
    have hliteral : s.AtLiteral := by
      by_contra hother
      exact (ScanState.round_endsIn hother).of_eq_error hround text pos rfl
    obtain ⟨run, exponent, behind, hreads⟩ := s.exists_readsLiteral lib.lexicon hliteral
    by_cases hmalformed : IsMalformed run
    · have hsame := (hreads.refused_iff.2 hmalformed).symm.trans hround
      obtain ⟨htext, hpos⟩ := Fault.invalidNumber.inj (Except.error.inj hsame)
      exact ⟨s, run, exponent, behind, hs, hreads, hmalformed, htext.symm, hpos.symm⟩
    · cases (hreads.taken hmalformed).symm.trans hround
  · intro ts hts
    refine ⟨(scan_endsIn lib source).of_eq_ok hts, fun t ht hkind => ?_⟩
    obtain ⟨s, hs, rfl⟩ := ScanState.exists_reached_of_scan_ok hts
    exact hs.exists_readsLiteral_of_mem (List.mem_reverse.1 ht) hkind

/-- an exponent without digits, one with a sign and digits, a letter behind it, and a run with two points -/
theorem scan_literals_points :
    (∃ run exponent behind, (ScanState.start "2e+.5E-3e").ReadsLiteral (Library.lexicon .empty) run exponent behind ∧
      ∃ ts, scan .empty "2e+.5E-3e" = .ok ts ∧ ts.map Token.text = ["2", "e", "+", ".5E-3", "e"] ∧
        ReadableNumbers ts) ∧
    ∃ s run exponent behind, ScanState.Reached (Library.lexicon .empty) "2e+ 1.2.3e5" s ∧
      s.ReadsLiteral (Library.lexicon .empty) run exponent behind ∧ IsMalformed run ∧
      "1.2.3e5" = .ofList (run ++ exponent) ∧ 4 = s.pos := by
  refine ⟨?_, (scan_literals .empty "2e+ 1.2.3e5").2.1 "1.2.3e5" 4 (by decide +kernel)⟩
  obtain ⟨hreached, -, hnumbers⟩ := scan_literals .empty "2e+.5E-3e"
  obtain ⟨run, exponent, behind, hreads, -⟩ := hreached _ .start ⟨'2', "e+.5E-3e".toList, rfl, rfl⟩
  have hscan : (scan .empty "2e+.5E-3e").map (List.map Token.text) = .ok ["2", "e", "+", ".5E-3", "e"] := by
    decide +kernel
  obtain ⟨ts, hts, htexts⟩ := map_eq_ok_iff.1 hscan
  exact ⟨run, exponent, behind, hreads, ts, hts, htexts, (hnumbers ts hts).1⟩

end ComplexFormula

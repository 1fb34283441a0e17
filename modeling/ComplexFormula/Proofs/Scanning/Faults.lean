/-
Where a scan fails. The position is always the length in bytes of the text that has been passed, and what the fault
shows stands there: a character that begins no token, or a number that denotes none. A scan that succeeds leaves no such
number.

- `StandsAt`: a piece of the source at its byte.
- `Fault.OfScan`: the faults of a scan.
- `tokenAt_endsIn`, `scanFrom_endsIn`: one token, and the rest of a text.
- `scan_endsIn`: **a scan** ends in readable numbers or in a fault that shows what stands in the source.
-/
import ComplexFormula.Proofs.Outcome
import ComplexFormula.Proofs.Scanning.Extent
import Mathlib.Data.String.Basic

namespace ComplexFormula

open String (utf8Len)

/-! ## Pieces of the source -/

/-- the text stands in the source and begins at that byte -/
def StandsAt (source : String) (pos : Nat) (text : String) : Prop :=
  ∃ before behind : String, source = before ++ text ++ behind ∧ before.utf8ByteSize = pos

/-- what stands in a source begins at a boundary of characters -/
theorem StandsAt.isValid {source text : String} {pos : Nat} (h : StandsAt source pos text) :
    String.Pos.Raw.IsValid source ⟨pos⟩ := by
  obtain ⟨before, behind, rfl, rfl⟩ := h
  exact String.Pos.Raw.isValid_iff_exists_append.2 ⟨before, text ++ behind, String.append_assoc, rfl⟩

theorem standsAt_utf8Len (front piece behind : List Char) :
    StandsAt (.ofList (front ++ (piece ++ behind))) (utf8Len front) (.ofList piece) := by
  refine ⟨.ofList front, .ofList behind, ?_, String.utf8ByteSize_ofList front⟩
  rw [String.ofList_append, String.ofList_append, String.append_assoc]

/-- the fault shows what stands in the source at its position: a character that is no blank, or digits and points that
denote no number -/
def Fault.OfScan (source : String) : Fault → Prop
  | .unexpectedCharacter c pos => Text.isBlank c = false ∧ StandsAt source pos (.ofList [c])
  | .invalidNumber text pos => text ≠ "" ∧ Decimal.read? text = none ∧ StandsAt source pos text
  | _ => False

/-! ## Scans -/

/-- every number denotes one -/
def ReadableNumbers (ts : List Token) : Prop := ∀ t ∈ ts, t.kind = .number → (Decimal.read? t.text).isSome = true

theorem tokenAt_endsIn (front behind : List Char) (kind : Token.Kind) {cs : List Char} (hcs : cs ≠ []) :
    EndsIn (Fault.OfScan (.ofList (front ++ (cs ++ behind))))
      (fun t => t.stop = utf8Len (front ++ cs) ∧ (t.kind = .number → (Decimal.read? t.text).isSome = true))
      (tokenAt kind (utf8Len front) (.ofList cs)) := by
  unfold tokenAt
  split
  case isTrue hnumber => exact .error ⟨by simpa using hcs, by simpa using hnumber.2, standsAt_utf8Len front cs behind⟩
  case isFalse hread =>
    rw [not_and] at hread
    refine .ok ⟨by rw [String.utf8Len_append, String.utf8ByteSize_ofList], fun hkind => ?_⟩
    simpa [Option.isSome_iff_ne_none] using hread hkind

/-- **The rest of a text** is scanned to the end, or up to what the fault shows. -/
theorem scanFrom_endsIn (words : List Word) {front cs : List Char} {pos : Nat} {done : List Token}
    (hpos : pos = utf8Len front) (hdone : ReadableNumbers done) :
    EndsIn (Fault.OfScan (.ofList (front ++ cs))) ReadableNumbers (scanFrom words pos done cs) := by
  fun_induction scanFrom words pos done cs generalizing front with
  | case1 pos done => exact .ok fun t ht => hdone t (List.mem_reverse.1 ht)
  | case2 pos done c cs hc ih =>
    have hbehind := @ih (front ++ [c]) (by simp [hpos, String.utf8Len_append]) hdone
    rwa [List.append_assoc] at hbehind
  | case3 pos done c cs hc hnone =>
    rw [hpos]
    exact .error ⟨by simpa using hc, standsAt_utf8Len front [c] cs⟩
  | case4 pos done c cs hc kind size hextent fault hfault =>
    obtain ⟨part, behind, rfl, rfl⟩ := exists_cut hextent
    have hpiece := tokenAt_endsIn front behind kind (List.cons_ne_nil c part)
    rw [List.take_succ_cons, List.take_left, hpos] at hfault
    rw [hfault] at hpiece
    exact .error hpiece.of_error
  | case5 pos done c cs hc kind size hextent t ht ih =>
    obtain ⟨part, behind, rfl, rfl⟩ := exists_cut hextent
    have hpiece := tokenAt_endsIn front behind kind (List.cons_ne_nil c part)
    rw [List.take_succ_cons, List.take_left, hpos] at ht
    rw [List.drop_succ_cons, List.drop_left] at ih ⊢
    rw [ht] at hpiece
    obtain ⟨hstop, hread⟩ := hpiece.of_ok
    have hbehind := ih hstop (List.forall_mem_cons.2 ⟨hread, hdone⟩)
    rwa [List.append_assoc, List.cons_append] at hbehind

/-- **A scan** ends in tokens whose numbers are readable, or in a fault that shows what stands in the source. -/
theorem scan_endsIn (lib : Library) (source : String) :
    EndsIn (Fault.OfScan source) ReadableNumbers (scan lib source) := by
  have hscan := @scanFrom_endsIn lib.lexicon [] source.toList 0 [] rfl (List.forall_mem_nil _)
  rwa [List.nil_append, String.ofList_toList] at hscan

end ComplexFormula

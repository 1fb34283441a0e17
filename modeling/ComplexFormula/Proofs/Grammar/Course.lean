/-
The course of an assembly: the states that it goes through while tokens are read. The name of a function is taken
together with the bracket behind it, every other token alone.

- `Assembly.Takes`: one move, and the tokens that it takes.
- `Assembly.Reaches`: the moves over some of the tokens.
- `Assembly.Reaches.run_eq`: from the state that is reached, a run goes on with the tokens that are left.
- `Assembly.Reaches.reads`: the states of a run are those of the tokens read so far.
- `Assembly.Stays`: moves during which no bracket is closed that was open at the beginning.
-/
import ComplexFormula.Proofs.Grammar.Soundness

namespace ComplexFormula.Assembly

open Grammar

/-- one move from the state s: a single token, or the name of a function and its bracket -/
inductive Takes (params : List Param) (s : Assembly) : List Token → Assembly → Prop where
  | token {t s'} (ht : t.kind ≠ .function) (h : s.step params t = .ok s') : Takes params s [t] s'
  | call {f o s'} (hf : f.kind = .function) (ho : o.kind = .leftParen) (h : s.beginValue f = .ok s') :
    Takes params s [f, o] (s'.opened (.call f.text f.start 0) .callOpen)

/-- the moves over the tokens lead from the state s to another one -/
inductive Reaches (params : List Param) (s : Assembly) : List Token → Assembly → Prop where
  | refl : Reaches params s [] s
  | tail {ts us s' s''} (h : Reaches params s ts s') (hmove : Takes params s' us s'') : Reaches params s (ts ++ us) s''

/-- the number of open brackets -/
def openBrackets (s : Assembly) : Nat := s.waiting.countP Waiting.isBracket

/-- the moves lead from the state s to another one, and no bracket that is open in s is closed on the way -/
inductive Stays (params : List Param) (s : Assembly) : Assembly → Prop where
  | refl : Stays params s s
  | tail {us s' s''} (h : Stays params s s') (hmove : Takes params s' us s'')
      (hopen : s.openBrackets ≤ s''.openBrackets) : Stays params s s''

section

variable {params : List Param} {stop : Nat} {s s' : Assembly} {ts : List Token}

theorem Takes.run_eq (h : Takes params s ts s') (us : List Token) :
    s.run params stop (ts ++ us) = s'.run params stop us := by
  cases h with
  | token ht h => exact run_cons ht h
  | call hf ho h => exact run_call hf ho h

/-- **A run goes on** from any state that it reaches. -/
theorem Reaches.run_eq (h : Reaches params s ts s') (us : List Token) :
    s.run params stop (ts ++ us) = s'.run params stop us := by
  induction h generalizing us with
  | refl => rfl
  | tail _ hmove ih => rw [List.append_assoc, ih, hmove.run_eq]

theorem Takes.reads {us : List Token} (h : Takes params s us s') (hs : Reads params ts s) :
    Reads params (ts ++ us) s' := by
  cases h with
  | token _ h => exact hs.step h
  | call hf ho h => exact hs.call hf ho h

/-- **The states of a run** are those of the tokens read so far. -/
theorem Reaches.reads (h : Reaches params start ts s) : Reads params ts s := by
  induction h with
  | refl => exact .start
  | tail _ hmove ih => exact hmove.reads ih

/-- at the beginning no bracket is open, so none can be closed -/
theorem Reaches.stays (h : Reaches params start ts s) : Stays params start s := by
  induction h with
  | refl => exact .refl
  | tail _ hmove ih => exact ih.tail hmove (Nat.zero_le _)

end

end ComplexFormula.Assembly

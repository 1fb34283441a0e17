/-
Stacks as lists, the top in front. Several entries are taken off at once, in the order in which they were pushed.

- `popMany?`: the topmost entries and the rest, if there are enough.
- `popMany?_reverse_append`: entries pushed one after the other come back as they were.
-/

namespace ComplexFormula.Stack

variable {α : Type}

/-- n more entries off the stack, in front of those already taken off -/
def popOnto : Nat → List α → List α → Option (List α × List α)
  | 0, taken, stack => some (taken, stack)
  | n + 1, taken, top :: stack => popOnto n (top :: taken) stack
  | _ + 1, _, [] => none

/-- the n topmost entries, the oldest first, and what remains -/
def popMany? (n : Nat) (stack : List α) : Option (List α × List α) := popOnto n [] stack

theorem popOnto_append (pushed taken stack : List α) :
    popOnto pushed.length taken (pushed ++ stack) = some (pushed.reverse ++ taken, stack) := by
  induction pushed generalizing taken with
  | nil => rfl
  | cons x xs ih =>
    simp only [List.length_cons, List.cons_append, popOnto, ih, List.reverse_cons, List.append_assoc, List.nil_append]

theorem popOnto_eq_none_iff (n : Nat) (taken stack : List α) : popOnto n taken stack = none ↔ stack.length < n := by
  induction n generalizing taken stack with
  | zero => simp [popOnto]
  | succ n ih => cases stack <;> simp [popOnto, ih]

/-- entries pushed in order are taken off in order -/
theorem popMany?_reverse_append (xs stack : List α) :
    popMany? xs.length (xs.reverse ++ stack) = some (xs, stack) := by
  have h := popOnto_append xs.reverse [] stack
  simpa [popMany?] using h

/-- only a stack that is too small refuses -/
theorem popMany?_eq_none_iff (n : Nat) (stack : List α) : popMany? n stack = none ↔ stack.length < n :=
  popOnto_eq_none_iff n [] stack

end ComplexFormula.Stack

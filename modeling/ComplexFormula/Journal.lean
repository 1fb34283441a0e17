/-
The journal of a build: what is worth noting while a text becomes a function, as data. Nothing is written anywhere;
who wants a log renders the events.

- `Event`: what happened.
- `Event.level`, `Event.message`: how it is rendered.
-/
import ComplexFormula.Text.Quoted

namespace ComplexFormula

/-- something worth noting during a build -/
inductive Event where
  /-- the letter i at a byte position was read as the imaginary unit -/
  | imaginaryUnit (pos : Nat)
  /-- a source was cut into so many tokens -/
  | scanned (count : Nat) (source : String)
  /-- a function was built with `kept` of the `found` clauses of its definition -/
  | built (name : String) (params : List String) (kept found : Nat)
deriving DecidableEq, Repr

/-- how important an event is -/
inductive Event.Level where
  | debug
  | trace
deriving DecidableEq, Repr

namespace Event

def Level.text : Level → String
  | .debug => "DEBUG"
  | .trace => "TRACE"

/-- a built function matters more than its tokens -/
def level : Event → Level
  | .built .. => .debug
  | _ => .trace

def message : Event → String
  | .imaginaryUnit pos => "treating 'i' at " ++ toString pos ++ " as the imaginary unit"
  | .scanned count source => "scanned " ++ toString count ++ " tokens from " ++ Text.Quoted.encode source
  | .built name params kept found =>
    "built " ++ name ++ "(" ++ ", ".intercalate params ++ ") with " ++ toString kept ++ " of " ++ toString found ++
      " clause(s)"

end Event

end ComplexFormula

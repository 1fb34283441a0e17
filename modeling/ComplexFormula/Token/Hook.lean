/-
Hooks: changes made to every token after scanning, one hook after the other. A hook may report what it does.

- `Hook.imaginaryUnit`: reads the identifier `i` as a constant, so that it is multiplied like a number.
- `scanWith`: scanning followed by the hooks.
- `hookEvents`: what the hooks report.
-/
import ComplexFormula.Journal
import ComplexFormula.Token.Scan

namespace ComplexFormula

/-- a change of tokens, and what it reports of a token that it is given -/
structure Hook where
  patch : Token → Token
  event? : Token → Option Event := fun _ => none

namespace Hook

/-- the identifier `i` becomes a constant -/
def imaginaryUnit : Hook where
  patch t := if t.is .identifier "i" then t.withKind .constant else t
  event? t := if t.is .identifier "i" then some (.imaginaryUnit t.start) else none

/-- the token after all hooks, in order -/
def patchAll (hooks : List Hook) (t : Token) : Token := hooks.foldl (fun t hook => hook.patch t) t

/-- what the hooks report of one token, each being given what the ones before it made of the token -/
def events : List Hook → Token → List Event
  | [], _ => []
  | hook :: hooks, t => (hook.event? t).toList ++ events hooks (hook.patch t)

end Hook

/-- the tokens of a text after the hooks -/
def scanWith (lib : Library) (hooks : List Hook) (source : String) : Except Fault (List Token) :=
  (scan lib source).map fun tokens => tokens.map (Hook.patchAll hooks)

/-- what the hooks report while a text is scanned, token by token; nothing if the scan fails -/
def hookEvents (lib : Library) (hooks : List Hook) (source : String) : List Event :=
  match scan lib source with
  | .ok tokens => tokens.flatMap (Hook.events hooks)
  | .error _ => []

end ComplexFormula

import PatternAutomata.SyntaxError
import PatternAutomata.Text.Quoted

/-!
# Pattern automata — the log

Reading a pattern and building its automata leave a log. An event says what
happened; its level and its wording follow from it.
-/

namespace PatternAutomata

/-- How much attention an event deserves. -/
inductive Level where
  | trace
  | debug
  deriving DecidableEq, Repr

def Level.name : Level → String
  | trace => "trace"
  | debug => "debug"

/-- What is worth logging. Sizes count states, unless said otherwise. -/
inductive Event where
  /-- A literal was read and got its position. -/
  | literalRead (position : Nat) (c : Char)
  | readingFailed (pattern : String) (error : SyntaxError)
  /-- Two automata were interleaved; the product has one state for each pair. -/
  | interleaved (left right pairs : Nat)
  | thompsonBuilt (pattern : String) (states transitions : Nat)
  | determinized (nfa dfa : Nat)
  /-- The direct construction took the way over the Thompson automaton. -/
  | interleavingFound (pattern : String)
  | directBuilt (pattern : String) (positions states : Nat)
  deriving DecidableEq, Repr

namespace Event

/-- Every literal that is read leaves an event, which is too many for any level but the
lowest. -/
def level : Event → Level
  | literalRead _ _ => .trace
  | _ => .debug

/-- The wording of an event. Patterns and characters are quoted, with what cannot be
printed escaped. -/
def message : Event → String
  | literalRead p c => s!"position {p} is {Text.quotedChar c}"
  | readingFailed pattern e =>
    s!"syntax error in {Text.quoted pattern} at offset {e.offset}: " ++
      s!"{e.kind.message} ({e.errors} error(s))"
  | interleaved l r pairs => s!"interleaved {l} and {r} states into {pairs} pairs"
  | thompsonBuilt pattern states transitions =>
    s!"{Text.quoted pattern}: {states} thompson states, {transitions} transitions"
  | determinized nfa dfa => s!"determinized {nfa} nfa states into {dfa} dfa states"
  | interleavingFound pattern =>
    s!"{Text.quoted pattern} interleaves, determinizing its Thompson automaton"
  | directBuilt pattern positions states =>
    s!"{Text.quoted pattern}: {positions} positions, {states} dfa states"

end Event

end PatternAutomata

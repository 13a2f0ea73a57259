import PatternAutomata.Text.Quoted

/-!
# Pattern automata — syntax errors

Reading a pattern stops at the first character that cannot be read. The error
says what is wrong and where; offsets count characters.
-/

namespace PatternAutomata

/-- What can be wrong with a pattern. -/
inductive SyntaxError.Kind where
  /-- A character outside of the dialect's alphabet. -/
  | invalidCharacter (c : Char)
  /-- A `)` without a matching `(`. -/
  | unmatchedClose
  /-- The pattern ends inside a group. -/
  | unclosedGroup
  /-- Groups are nested deeper than the limit. -/
  | tooDeep (limit : Nat)
  deriving DecidableEq, Repr

/-- What is wrong with a pattern, and where. Only the first error is reported, whatever
the rules come upon while they return. -/
structure SyntaxError where
  kind : SyntaxError.Kind
  offset : Nat
  /-- How many errors were met up to this one. -/
  errors : Nat
  deriving DecidableEq, Repr

namespace SyntaxError

/-- The wording of what is wrong, without the place. -/
def Kind.message : Kind → String
  | invalidCharacter c => s!"invalid character {Text.quotedChar c}"
  | unmatchedClose => "unmatched ')'"
  | unclosedGroup => "missing ')'"
  | tooDeep limit => s!"groups nested deeper than {limit} levels"

def message (e : SyntaxError) : String :=
  s!"Syntax error at offset {e.offset}: {e.kind.message}."

end SyntaxError

end PatternAutomata
